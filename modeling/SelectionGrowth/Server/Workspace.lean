import SelectionGrowth.Address.Url
import SelectionGrowth.Language.FileTypes
import SelectionGrowth.Selection.History
import SelectionGrowth.Settings.Load
import SelectionGrowth.Store

/-!
# Workspaces

A workspace is what a session works on: the settings in force, the open
documents and their selection histories. Clients change and query it by calls.

## Main definitions

- `Workspace` — settings, documents and histories
- `Call` — a change or a query of one document
- `Workspace.handle` — the effect and the answer of a call
- `Workspace.run` — the effect of a sequence of calls

## Design notes

Every change of a document's text forgets its selection history, because ranges
of an older text mean nothing in the new one. A text is parsed before the call
that changed it is answered; if that fails the document has no tree.
-/

namespace SelectionGrowth

/-- Settings, documents and histories. -/
structure Workspace where
  settings : EffectiveSettings
  fileTypes : FileTypes
  store : Store
  history : History

/-- A change or a query of one document. -/
inductive Call where
  | opened (address : Url) (clientId : String) (document : Document)
  | changed (address : Url) (revision : Int) (changes : List Change)
  | closed (address : Url)
  | expand (address : Url) (range : Range)
  | shrink (address : Url) (range : Range)
  | ranges (address : Url) (positions : List Position)
deriving DecidableEq

def Call.address : Call → Url
  | opened address _ _ => address
  | changed address _ _ => address
  | closed address => address
  | expand address _ => address
  | shrink address _ => address
  | ranges address _ => address

/-- The answer to a call. Changes are not answered. -/
inductive CallAnswer where
  | none
  | range (result : Except Failure (Option Range))
  | ranges (result : Except Failure (List SelectionRange))

namespace Workspace

/-- The workspace before any settings are loaded. -/
def initial (order : LanguageOrder) : Workspace where
  settings := Settings.builtIn.effective
  fileTypes := FileTypes.ofSettings order Settings.builtIn.effective
  store := Store.empty
  history := History.empty

/-- Puts settings into force. Open documents keep their trees. -/
def configure (w : Workspace) (order : LanguageOrder) (settings : EffectiveSettings) :
    Workspace where
  settings := settings
  fileTypes := FileTypes.ofSettings order settings
  store := w.store.setAllowErrors settings.allowErrorTrees
  history := w.history

/--
Parses the current text of a document in its language, if that has a grammar. A
failed parse leaves the document without a tree and is reported.
-/
def reparse (w : Workspace) (parser : Parser) (key : String) (base : Option EditedParse)
    (document : Document) (language : Option String) : Workspace × List Event :=
  match language.filter Registry.bundled.contains with
  | none => (w, [])
  | some language =>
    match Parse.of Registry.bundled parser language (w.settings.kindsOf language) base document with
    | .ok parse => ({ w with store := (w.store.setParsed key parse).2 }, [])
    | .error failure =>
      ({ w with store := w.store.clearParse key document.revision },
        [⟨.warning, "Failed to parse " ++ key ++ ": " ++ failure.message⟩])

/-- Opens a document, in place of any earlier one at its address. -/
def opened (w : Workspace) (parser : Parser) (address : Url) (clientId : String)
    (document : Document) : Workspace × List Event :=
  let key := address.key
  let language := w.fileTypes.resolve address.filePath (some clientId)
  let inserted :=
    { w with store := w.store.insert key document language, history := w.history.clear key }
  inserted.reparse parser key none document language

/--
Applies changes to an open document; changes of any other are ignored. If the
changes have edits, the text is parsed anew from the tree they were made to.
-/
def changed (w : Workspace) (parser : Parser) (address : Url) (revision : Int)
    (changes : List Change) : Workspace × List Event :=
  let key := address.key
  match w.store.get? key with
  | none => (w, [])
  | some entry =>
    let (text, edits) := Change.applyAll entry.document.text changes
    let base := if edits.isEmpty then none else w.store.editedParse? key edits
    let document : Document := ⟨text, revision⟩
    let updated :=
      { w with store := (w.store.updateText key document).2, history := w.history.clear key }
    updated.reparse parser key base document entry.language

def closed (w : Workspace) (address : Url) : Workspace :=
  { w with
    store := (w.store.remove address.key).2
    history := w.history.clear address.key }

/-- Grows a range and remembers the step if there is one. -/
def expand (w : Workspace) (address : Url) (range : Range) :
    Workspace × Except Failure (Option Range) :=
  match w.store.source.expand w.settings.groups address.key range with
  | .ok (some next) =>
    ({ w with history := w.history.record address.key range next }, .ok (some next))
  | other => (w, other)

/-- Retraces the latest step if it ended at a range. -/
def shrink (w : Workspace) (address : Url) (range : Range) : Workspace × Option Range :=
  match w.history.shrink address.key range with
  | (result, history) => ({ w with history }, result)

/-- The effect of a call, its answer, and what is worth telling the user. -/
def handle (w : Workspace) (parser : Parser) (call : Call) : Workspace × CallAnswer × List Event :=
  match call with
  | .opened address clientId document =>
    let (next, events) := w.opened parser address clientId document
    (next, .none, events)
  | .changed address revision changes =>
    let (next, events) := w.changed parser address revision changes
    (next, .none, events)
  | .closed address => (w.closed address, .none, [])
  | .expand address range =>
    let (next, result) := w.expand address range
    (next, .range result, [])
  | .shrink address range =>
    let (next, result) := w.shrink address range
    (next, .range (.ok result), [])
  | .ranges address positions =>
    (w, .ranges (w.store.source.selectionRanges w.settings.groups address.key positions), [])

def run (w : Workspace) (parser : Parser) (calls : List Call) : Workspace :=
  calls.foldl (fun w call => (w.handle parser call).1) w

end Workspace

end SelectionGrowth
