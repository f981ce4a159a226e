import SelectionGrowth.Server.Methods

/-!
# Sessions

A session is one conversation with a client. It starts with `initialize`, ends
with `shutdown` and `exit`, and serves calls in between.

## Main definitions

- `Phase` — how far the conversation has come
- `Session` — the phase, the workspace and the events that wait to be told
- `Reply` — the answer to a message
- `Session.receive` — the effect of a message, its answer and the events to tell

## Design notes

A message is refused for the first reason that applies: the server does not know
the method, the phase does not allow it, it is a notification sent as a
request, its parameters are invalid, or the server does not offer it.
Notifications are never answered, whatever happens to them.
-/

namespace SelectionGrowth

/-- How far a conversation has come. -/
inductive Phase where
  | starting
  | serving
  | stopped
  | exited
deriving DecidableEq

structure Message where
  method : String
  params : Option Data
  isNotification : Bool

/-- Why a request is refused. -/
inductive Refusal where
  | notInitialized
  | invalidRequest
  | unknownMethod
  | invalidParams
deriving DecidableEq

def Refusal.code : Refusal → Int
  | notInitialized => -32002
  | invalidRequest => -32600
  | unknownMethod => -32601
  | invalidParams => -32602

/-- Why a phase does not allow what a session serves; `none` if it does. -/
def Phase.refusal? : Phase → Option Refusal
  | .starting => some .notInitialized
  | .serving => none
  | .stopped => some .invalidRequest
  | .exited => some .invalidRequest

inductive Reply where
  | none
  | capabilities
  | null
  | range (range : Range)
  | ranges (selections : List SelectionRange)
  | failure (failure : Failure)
  | refusal (refusal : Refusal)
  | exited

/-- One conversation with a client. -/
structure Session where
  phase : Phase
  config : Option String
  workspace : Workspace
  pending : List Event

namespace Session

/-- A conversation that has not started; `config` replaces the user file. -/
def new (order : LanguageOrder) (config : Option String) : Session where
  phase := .starting
  config := config
  workspace := Workspace.initial order
  pending := []

/-- The line that tells a client that the server is ready. -/
def readyLine : Event :=
  ⟨.info, "hirogeru 0.0.1 ready (" ++ ", ".intercalate Registry.bundled.names ++ ")"⟩

/-- A session, an answer and events to tell. -/
abbrev Effect := Session × Reply × List Event

/-- Refuses a request; a notification is dropped without a word. -/
def refuse (s : Session) (message : Message) (refusal : Refusal) : Effect :=
  (s, if message.isNotification then .none else .refusal refusal, [])

def replyOf : CallAnswer → Reply
  | .none => .none
  | .range (.ok (some range)) => .range range
  | .range (.ok none) => .null
  | .range (.error failure) => .failure failure
  | .ranges (.ok selections) => .ranges selections
  | .ranges (.error failure) => .failure failure

/-- Starts the conversation: loads settings and keeps the events for later. -/
def handshake (s : Session) (surroundings : Surroundings) (params : Params.Handshake) : Effect :=
  let root := params.rootPath surroundings.current
  let (settings, events) := Settings.load surroundings s.config root params.options
  ({ s with
      phase := .serving
      workspace := s.workspace.configure surroundings.languageOrder settings
      pending := events },
    .capabilities, [])

/-- Tells the events that have waited, then that the server is ready. -/
def announce (s : Session) : Effect :=
  ({ s with pending := [] }, .none, s.pending ++ [readyLine])

def serve (s : Session) (parser : Parser) (call : Call) : Effect :=
  let (workspace, answer, events) := s.workspace.handle parser call
  ({ s with workspace }, replyOf answer, events)

/-- A message that only a serving session handles. -/
def receiveServing (s : Session) (message : Message) (isRequest : Bool) (serve : Effect) :
    Effect :=
  match s.phase.refusal? with
  | some refusal => s.refuse message refusal
  | none =>
    match isRequest, message.isNotification with
    | true, true => (s, .none, [])
    | false, false => s.refuse message .invalidRequest
    | _, _ => serve

/-- The effect of a message in a conversation that has not ended. -/
def receiveOpen (s : Session) (surroundings : Surroundings) (parser : Parser)
    (message : Message) : Effect :=
  match Method.ofName message.method with
  | .unknown =>
    if "$/".toList.isPrefixOf message.method.toList then (s, .none, [])
    else s.refuse message .unknownMethod
  | .exit => ({ s with phase := .exited }, .none, [])
  | .handshake =>
    if s.phase ≠ .starting then s.refuse message .invalidRequest
    else if message.isNotification then (s, .none, [])
    else
      match message.params.bind Params.handshake? with
      | none => s.refuse message .invalidParams
      | some params => s.handshake surroundings params
  | .shutdown =>
    let stopped := { s with phase := .stopped }
    s.receiveServing message true
      (if message.params.isSome then stopped.refuse message .invalidParams
        else (stopped, .null, []))
  | .ready =>
    s.receiveServing message false
      (match message.params.bind (Params.fields? []) with
        | none => (s, .none, [])
        | some _ => s.announce)
  | .call method =>
    s.receiveServing message method.isRequest
      (match message.params.bind method.decode? with
        | none => s.refuse message .invalidParams
        | some none => (s, if message.isNotification then .none else .null, [])
        | some (some call) => s.serve parser call)
  | .unofferedRequest accepts =>
    s.receiveServing message true
      (s.refuse message (if message.params.any accepts then .unknownMethod else .invalidParams))
  | .unofferedNotification => s.receiveServing message false (s, .none, [])

/-- The effect of a message. After the end there is nothing left to answer. -/
def receive (s : Session) (surroundings : Surroundings) (parser : Parser) (message : Message) :
    Effect :=
  if s.phase = .exited then (s, .exited, []) else s.receiveOpen surroundings parser message

end Session

end SelectionGrowth
