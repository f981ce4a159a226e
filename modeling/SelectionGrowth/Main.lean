import SelectionGrowth.CommandLine.Run
import SelectionGrowth.Json.Reader
import SelectionGrowth.Json.Writer
import SelectionGrowth.Server.Wire

/-!
# The program

Reads the files that an action needs, hands their texts to the library and
prints what the library answers.

## Main definitions

- `CommandLine.Action.paths`, `Message.paths` — the files that an action or a message reads
- `main` — the program

## Design notes

The library asks for the text at a path through a function, so all texts are
read before it is called. No grammar is linked in: `noGrammars` finds no parse
of any text, and a program that has grammars passes its own parser instead.
-/

namespace SelectionGrowth

/-- The settings files that a start in a folder reads. -/
def settingsPaths (s : Surroundings) (config root : Option String) : List String :=
  (config.or s.userFile).toList ++ (root.map (joinPath · settingsFileName)).toList

/-- The files that an action reads before it is done. -/
def CommandLine.Action.paths (s : Surroundings) : CommandLine.Action → List String
  | .expand config file _ _ _ => file :: settingsPaths s config (some s.current)
  | _ => []

/-- The files that a message makes a session read. -/
def Message.paths (s : Surroundings) (config : Option String) (message : Message) :
    List String :=
  match Method.ofName message.method, message.params.bind Params.handshake? with
  | .handshake, some params => settingsPaths s config (params.rootPath s.current)
  | _, _ => []

/-- Surroundings in which exactly some files have been read. -/
def Surroundings.withTexts (s : Surroundings)
    (texts : List (String × Except FileFault String)) : Surroundings :=
  { s with read := fun path => (Table.find? path texts).getD (.error .notFound) }

/-- The parser of a program without grammars. -/
def noGrammars : Parser := fun _ _ _ => none

/-- The number of bytes that a header line announces. -/
def contentLength? (line : String) : Option Nat :=
  match Text.cutAt (· = ':') line.toList with
  | (name, some value) =>
    if String.ofList (name.map Char.toLower) = "content-length" then
      CommandLine.number? Text.maxCoordinate (value.filter fun c => !c.isWhitespace)
    else none
  | _ => none

/-- A value as the message that carries it. -/
def framed (d : Data) : String :=
  let body := Json.write d
  "Content-Length: " ++ toString body.utf8ByteSize ++ "\r\n\r\n" ++ body

/-- The text of a file, or why it cannot be read. -/
def readText (path : String) : IO (Except FileFault String) := do
  match ← (IO.FS.readBinFile path).toBaseIO with
  | .ok bytes =>
    match String.fromUTF8? bytes with
    | some text => return .ok text
    | none => return .error .notUtf8
  | .error (.noFileOrDirectory _ _ _) => return .error .notFound
  | .error (.inappropriateType _ 21 _) => return .error .isADirectory
  | .error (.inappropriateType _ _ _) => return .error .notADirectory
  | .error other => return .error (.stated (toString other))

/-- The surroundings with the texts at some paths. -/
def Surroundings.reading (s : Surroundings) (paths : List String) : IO Surroundings := do
  let texts ← paths.mapM fun path => return (path, ← readText path)
  return s.withTexts texts

/-- The surroundings of the running program, before any file is read. -/
def Surroundings.ofProgram : IO Surroundings := do
  return {
    read := fun _ => .error .notFound
    current := toString (← IO.currentDir)
    configHome := ← IO.getEnv "XDG_CONFIG_HOME"
    home := ← IO.getEnv "HOME"
    languageOrder := .forward }

/-- Reads the header lines of a message; none at the end of the input. -/
partial def readLength (input : IO.FS.Stream) (length : Nat) : IO (Option Nat) := do
  let line ← input.getLine
  if line.isEmpty then return none
  else if line = "\r\n" then return some length
  else readLength input ((contentLength? line).getD length)

/-- Reads a number of bytes, or fewer at the end of the input. -/
partial def readBytes (input : IO.FS.Stream) (seen : ByteArray) (length : Nat) :
    IO ByteArray := do
  if length ≤ seen.size then return seen
  else
    let more ← input.read (length - seen.size).toUSize
    if more.isEmpty then return seen else readBytes input (seen ++ more) length

/-- Serves the messages on the input until the client has nothing more to say. -/
partial def serveMessages (s : Surroundings) (input output : IO.FS.Stream) (session : Session) :
    IO Unit := do
  let some length ← readLength input 0 | return
  let body ← readBytes input ByteArray.empty length
  match (String.fromUTF8? body).bind Json.read? with
  | none =>
    output.putStr (framed Wire.unreadable)
    output.flush
    serveMessages s input output session
  | some value =>
    match Wire.message? value with
    | none => serveMessages s input output session
    | some message =>
      let s ← s.reading (message.paths s session.config)
      let (session, reply, events) := session.receive s noGrammars message
      for event in events do
        output.putStr (framed (Wire.logNotification event))
      if let some response := Wire.response? ((value.field? "id").getD .null) reply then
        output.putStr (framed response)
      output.flush
      if session.phase = .exited then return
      else serveMessages s input output session

end SelectionGrowth

/-- Runs the command that the arguments ask for. -/
def main (arguments : List String) : IO UInt32 := do
  let s ← SelectionGrowth.Surroundings.ofProgram
  let action := SelectionGrowth.CommandLine.parse arguments
  if let .serve config := action then
    SelectionGrowth.serveMessages s (← IO.getStdin) (← IO.getStdout)
      (SelectionGrowth.Session.new s.languageOrder config)
    return 0
  let s ← s.reading (action.paths s)
  let outcome := SelectionGrowth.CommandLine.run s SelectionGrowth.noGrammars arguments
  IO.print outcome.output
  IO.eprint outcome.errors
  return outcome.code.toUInt32
