import SelectionGrowth.Text.Split
import SelectionGrowth.Toml.Lexer
import SelectionGrowth.Toml.Scalar
import SelectionGrowth.Toml.Section

/-!
# Reading TOML

The tokens of a text are folded over the brackets that are still open. Closing
a bracket turns its pieces into a value or a header, and each line outside all
brackets becomes a statement. The statements are then carried out in order.

## Main definitions

- `Toml.Piece` — a token, or a part that is already understood
- `Toml.Statement` — a header, or a key with its value
- `Toml.statements?` — the statements of a text
- `Toml.read?` — the value of a text
-/

namespace SelectionGrowth.Toml

/-- A token, or a part that is already understood. -/
inductive Piece where
  | token (t : Token)
  | value (data : Data)
  | innerKey (path : List String)
  | header (path : List String) (isList : Bool)

/-- One line of a text. -/
inductive Statement where
  | table (path : List String)
  | tables (path : List String)
  | assign (path : List String) (value : Data)

/-- The brackets that can be open. -/
inductive Bracket where
  | list
  | inline
  | header
  | innerHeader
deriving DecidableEq

/-- Whether a piece is blank; a line break counts only inside a list. -/
def Piece.isBlank : Piece → Bool
  | .token (.blank _) => true
  | .token .newline => true
  | _ => false

/-- Whether a piece is a given mark. -/
def Piece.isMark (c : Char) : Piece → Bool
  | .token (.mark d) => c = d
  | _ => false

def trim (pieces : List Piece) : List Piece :=
  Text.trimEnds Piece.isBlank pieces

def splitCommas (pieces : List Piece) : List (List Piece) :=
  Text.splitOn (Piece.isMark ',') pieces

def keyPart? : Piece → Option String
  | .token (.word cs) =>
    if cs.all fun c => c.isAlphanum || c = '_' || c = '-' then some (String.ofList cs) else none
  | .token (.quoted false cs) => some (String.ofList cs)
  | _ => none

/-- The parts of a key without blanks: parts and dots in turn. -/
def keyParts? : List Piece → Option (List String)
  | [] => none
  | [part] => (keyPart? part).map fun key => [key]
  | part :: dot :: rest =>
    if dot.isMark '.' then
      match keyPart? part, keyParts? rest with
      | some key, some more => some (key :: more)
      | _, _ => none
    else none

def key? (pieces : List Piece) : Option (List String) :=
  keyParts? (pieces.filter fun p => !p.isBlank)

/-- The written form of unquoted pieces. -/
def written? : List Piece → Option (List Char)
  | [] => some []
  | .token (.word cs) :: rest => (written? rest).map (cs ++ ·)
  | .token (.blank cs) :: rest => (written? rest).map (cs ++ ·)
  | .token (.mark '.') :: rest => (written? rest).map ('.' :: ·)
  | _ :: _ => none

def value? (pieces : List Piece) : Option Data :=
  match trim pieces with
  | [.value data] => some data
  | [.token (.quoted _ cs)] => some (.text (String.ofList cs))
  | unquoted => (written? unquoted).bind scalar?

/-- A key and a value with an equals sign between them. -/
def pair? (pieces : List Piece) : Option (List String × Data) :=
  match Text.cutAt (Piece.isMark '=') pieces with
  | (_, none) => none
  | (before, some after) =>
    match key? before, value? after with
    | some path, some value => some (path, value)
    | _, _ => none

/-- The items of a list; a comma may follow the last one. -/
def list? (pieces : List Piece) : Option Data :=
  let parts := splitCommas pieces
  let items := if (trim (parts.getLast?.getD [])).isEmpty then parts.dropLast else parts
  (items.mapM value?).map .list

/-- The fields of a table on one line; no comma follows the last one. -/
def inline? (pieces : List Piece) : Option Data :=
  if (trim pieces).isEmpty then some (close [])
  else
    match (splitCommas pieces).mapM pair? with
    | none => none
    | some pairs =>
      (pairs.foldlM (fun fields pair => assign pair.1 pair.2 fields) []).map close

/-- The piece that a closed bracket becomes. -/
def Bracket.closed? (bracket : Bracket) (pieces : List Piece) : Option Piece :=
  match bracket, pieces with
  | .list, _ => (list? pieces).map .value
  | .inline, _ => (inline? pieces).map .value
  | .innerHeader, _ => (key? pieces).map .innerKey
  | .header, [.innerKey path] => some (.header path true)
  | .header, _ => (key? pieces).map fun path => .header path false

/-- The statement of a line, if the line is not blank. -/
def statement? (pieces : List Piece) : Option (Option Statement) :=
  match trim pieces with
  | [] => some none
  | [.header path false] => some (some (.table path))
  | [.header path true] => some (some (.tables path))
  | line => (pair? line).map fun pair => some (.assign pair.1 pair.2)

/--
What has been read so far: statements and the pieces of the current line, both in
reverse, and the open brackets with their pieces, the innermost first.
-/
structure Progress where
  statements : List Statement
  line : List Piece
  brackets : List (Bracket × List Piece)

namespace Progress

/-- Adds a piece to the innermost open bracket, or to the line. -/
def push (p : Progress) (piece : Piece) : Progress :=
  match p.brackets with
  | [] => { p with line := piece :: p.line }
  | (bracket, pieces) :: outer => { p with brackets := (bracket, piece :: pieces) :: outer }

def enter (p : Progress) (bracket : Bracket) : Progress :=
  { p with brackets := (bracket, []) :: p.brackets }

/-- Whether the current line has its equals sign, so that a bracket starts a value. -/
def inValue (p : Progress) : Bool :=
  p.line.any (Piece.isMark '=')

/-- The bracket that an opening square bracket starts. -/
def openSquare? (p : Progress) : Option Bracket :=
  match p.brackets with
  | [] =>
    if p.inValue then some .list
    else if p.line.all Piece.isBlank then some .header
    else none
  | (.header, []) :: _ => some .innerHeader
  | (.header, _) :: _ => none
  | (.innerHeader, _) :: _ => none
  | _ => some .list

/-- Whether an opening curly bracket may come next. -/
def curlyAllowed (p : Progress) : Bool :=
  match p.brackets with
  | [] => p.inValue
  | (.list, _) :: _ => true
  | (.inline, _) :: _ => true
  | _ => false

/-- Closes the innermost bracket. -/
def leave? (p : Progress) (curly : Bool) : Option Progress :=
  match p.brackets with
  | [] => none
  | (bracket, pieces) :: outer =>
    if decide (bracket = .inline) == curly then
      (bracket.closed? pieces.reverse).map fun piece => { p with brackets := outer }.push piece
    else none

def endLine? (p : Progress) : Option Progress :=
  (statement? p.line.reverse).map fun
    | none => { p with line := [] }
    | some statement => { p with line := [], statements := statement :: p.statements }

def step (p : Progress) (token : Token) : Option Progress :=
  match token with
  | .newline =>
    match p.brackets with
    | [] => p.endLine?
    | (.list, _) :: _ => some (p.push (.token token))
    | _ => none
  | .mark c =>
    if c = '[' then p.openSquare?.map p.enter
    else if c = '\x7b' then if p.curlyAllowed then some (p.enter .inline) else none
    else if c = ']' then p.leave? false
    else if c = '\x7d' then p.leave? true
    else some (p.push (.token token))
  | _ => some (p.push (.token token))

end Progress

def statements? (text : String) : Option (List Statement) :=
  match tokens? text with
  | none => none
  | some tokens =>
    match (tokens ++ [Token.newline]).foldlM Progress.step ⟨[], [], []⟩ with
    | some p => if p.brackets.isEmpty then some p.statements.reverse else none
    | none => none

/-- Carries out a statement on the table of the whole text; the header in force is kept. -/
def perform (state : List String × Fields) (statement : Statement) :
    Option (List String × Fields) :=
  match statement with
  | .table path => (atHeader openTable path state.2).map fun fields => (path, fields)
  | .tables path => (atHeader appendTable path state.2).map fun fields => (path, fields)
  | .assign path value =>
    (within (assign path value) state.1 state.2).map fun fields => (state.1, fields)

/-- The value of a text, if the text is a TOML document. -/
def read? (text : String) : Option Data :=
  match statements? text with
  | none => none
  | some statements => (statements.foldlM perform ([], [])).map fun state => close state.2

end SelectionGrowth.Toml
