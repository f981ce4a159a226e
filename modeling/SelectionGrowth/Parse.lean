import SelectionGrowth.Language.Registry
import SelectionGrowth.Syntax.Listing
import SelectionGrowth.Text.Change

/-!
# Parsing documents

Parsing itself is the work of a grammar: it turns a text into a listing. A
document is parsed in a language if a grammar is registered for it, and the
listing becomes a syntax tree of the document's revision. A grammar may start
from the listing of an older text and the edits made since.

## Main definitions

- `EditedParse` — an older listing and the edits made since
- `Parser` — the listings that grammars give
- `Parse` — a listing with the syntax tree made from it
- `Parse.of` — the parse of a document
-/

namespace SelectionGrowth

/-- A listing that is about to be redone, with the edits made to its text since. -/
structure EditedParse where
  base : Listing
  edits : List Edit

/-- The listing of a text in a grammar, redone from an older one if there is one. A grammar may
give up on a text. -/
abbrev Parser := Grammar → Option EditedParse → String → Option Listing

/-- A listing with the syntax tree made from it. -/
structure Parse where
  listing : Listing
  tree : SyntaxTree

/-- The listing of a text in a language. -/
def Registry.listing? (registry : Registry) (parser : Parser) (language : String)
    (base : Option EditedParse) (text : String) : Option Listing :=
  match registry.get? language with
  | none => none
  | some grammar => parser grammar base text

/-- Parses a document and makes its syntax tree. -/
def Parse.of (registry : Registry) (parser : Parser) (language : String) (kinds : KindTable)
    (base : Option EditedParse) (document : Document) : Except Failure Parse :=
  match registry.listing? parser language base document.text with
  | none => .error (.unparseable (.noParser language))
  | some listing => do
    let tree ← SyntaxTree.ofListing kinds document.length document.revision listing
    return ⟨listing, tree⟩

/-- A parse holds the listing of the text and the tree made from it. -/
theorem Parse.of_eq_ok_iff {registry : Registry} {parser : Parser} {language : String}
    {kinds : KindTable} {base : Option EditedParse} {document : Document} {parse : Parse} :
    Parse.of registry parser language kinds base document = .ok parse ↔
      registry.listing? parser language base document.text = some parse.listing ∧
      SyntaxTree.ofListing kinds document.length document.revision parse.listing =
        .ok parse.tree := by
  obtain ⟨listing, tree⟩ := parse
  unfold Parse.of
  cases hlisting : registry.listing? parser language base document.text with
  | none => simp
  | some found =>
    simp only [bind, Except.bind, pure, Except.pure, Option.some.injEq]
    constructor
    · intro h
      split at h
      · simp at h
      · next htree =>
        simp only [Except.ok.injEq, Parse.mk.injEq] at h
        obtain ⟨rfl, rfl⟩ := h
        exact ⟨rfl, htree⟩
    · rintro ⟨rfl, htree⟩
      simp only [htree]

end SelectionGrowth
