import SelectionGrowth.Span

/-!
# Failures

Every way in which a request can fail, as a cause that carries its data. The
wording of each cause is fixed in one place, so the rest of the library never
handles message text.

## Main definitions

- `RangeFault`, `ParseFault`, `Mismatch`, `FileFault` — the causes, by family
- `Failure` — a cause together with its family
- `Failure.message` — the wording shown to a client or on the command line
- `Failure.code` — the JSON-RPC error code of each family
-/

namespace SelectionGrowth

/-- Why a document or a range inside it cannot be located. -/
inductive RangeFault where
  | selectionPastEnd (selection : Span) (length : Nat)
  | offsetOutside (offset length : Nat)
  | positionOutside (line column lineCount : Nat)
  | unknownDocument (address : String)
  | malformedPosition (text : String)
  | stated (text : String)
deriving DecidableEq

/-- Why a document has no usable syntax tree. -/
inductive ParseFault where
  | noRoot
  | leftOpen (count : Nat)
  | rootNotAtStart
  | escapesParent (child : String) (childSpan : Span) (parent : String) (parentSpan : Span)
  | overlapsSibling (child : String) (childSpan : Span)
  | noParser (language : String)
  | noTree (address : String) (language : Option String)
  | errorsInDocument (address : String)
  | errorsInFile (path : String)
  | noLanguage (path : String)
  | stated (text : String)
deriving DecidableEq

/-- How a syntax tree and a text disagree about what they describe. -/
inductive Mismatch where
  | revisions (tree document : Int)
  | lengths (tree document : Nat)
  | stated (tree document : String)
deriving DecidableEq

/-- Why a file cannot be read as text. -/
inductive FileFault where
  | notFound
  | notADirectory
  | isADirectory
  | notUtf8
  | stated (text : String)
deriving DecidableEq

/-- A failed request. -/
inductive Failure where
  | outOfRange (fault : RangeFault)
  | unparseable (fault : ParseFault)
  | mismatch (fault : Mismatch)
  | config (text : String)
  | file (fault : FileFault)
deriving DecidableEq

def RangeFault.message : RangeFault → String
  | selectionPastEnd selection length =>
    "selection " ++ selection.render ++ " reaches past the end of the document (" ++
      toString length ++ " bytes)"
  | offsetOutside offset length =>
    "offset " ++ toString offset ++ " outside document of length " ++ toString length
  | positionOutside line column lineCount =>
    "position " ++ toString line ++ ":" ++ toString column ++ " outside document with " ++
      toString lineCount ++ " lines"
  | unknownDocument address => "unknown document " ++ address
  | malformedPosition text => "expected LINE:COLUMN, got '" ++ text ++ "'"
  | stated text => text

def ParseFault.message : ParseFault → String
  | noRoot => "syntax tree has no root node"
  | leftOpen count => toString count ++ " syntax node(s) left open"
  | rootNotAtStart => "root node does not start at the beginning of the document"
  | escapesParent child childSpan parent parentSpan =>
    child ++ " at " ++ childSpan.render ++ " escapes its parent " ++ parent ++ " at " ++
      parentSpan.render
  | overlapsSibling child childSpan =>
    child ++ " at " ++ childSpan.render ++ " overlaps its previous sibling"
  | noParser language => "no parser for " ++ language
  | noTree address language =>
    "no syntax tree for " ++ address ++ " (" ++ language.getD "unknown language" ++ ")"
  | errorsInDocument address => "syntax tree for " ++ address ++ " contains parse errors"
  | errorsInFile path => path ++ " contains parse errors"
  | noLanguage path => "no language configured for " ++ path
  | stated text => text

/-- The wording for the tree's side and for the document's side of a mismatch. -/
def Mismatch.sides : Mismatch → String × String
  | revisions tree document =>
    ("revision " ++ toString tree, "revision " ++ toString document)
  | lengths tree document => (toString tree ++ " bytes", toString document ++ " bytes")
  | stated tree document => (tree, document)

def FileFault.message : FileFault → String
  | notFound => "No such file or directory (os error 2)"
  | notADirectory => "Not a directory (os error 20)"
  | isADirectory => "Is a directory (os error 21)"
  | notUtf8 => "stream did not contain valid UTF-8"
  | stated text => text

namespace Failure

/-- The wording of a failure: its family, then its cause. -/
def message : Failure → String
  | outOfRange fault => "Range out of bounds: " ++ fault.message
  | unparseable fault => "Document could not be parsed: " ++ fault.message
  | mismatch fault =>
    "Revision mismatch: tree is for " ++ fault.sides.1 ++ ", document is at " ++ fault.sides.2
  | config text => "Invalid configuration: " ++ text
  | file fault => "IO error: " ++ fault.message

/-- The JSON-RPC code under which a failure is reported. -/
def code : Failure → Int
  | outOfRange _ => -32602
  | mismatch _ => -32801
  | unparseable _ => -32803
  | config _ => -32603
  | file _ => -32603

end Failure

end SelectionGrowth
