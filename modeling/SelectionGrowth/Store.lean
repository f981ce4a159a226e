import SelectionGrowth.Parse
import SelectionGrowth.Selection.Service

/-!
# Document stores

The open documents, each with its current text, its language and the latest
parse that was accepted for it. A parse may lag behind the text while a new one
is under way; its revision tells.

## Main definitions

- `Entry` — an open document
- `Store` — all open documents
- `Store.insert`, `Store.updateText`, `Store.setParsed`, `Store.clearParse`,
  `Store.remove` — the changes of a store
- `Store.editedParse?` — the parse that incremental parsing may start from
- `Store.source` — the store as a supplier of texts and trees
-/

namespace SelectionGrowth

/-- An open document. -/
structure Entry where
  document : Document
  language : Option String
  parse : Option Parse

/-- All open documents. -/
structure Store where
  entries : Table String Entry
  allowErrors : Bool

namespace Store

/-- The store without documents, which hands out no trees with errors. -/
def empty : Store :=
  ⟨Table.empty, false⟩

/-- Decides whether trees that contain errors are handed out. -/
def setAllowErrors (s : Store) (allow : Bool) : Store :=
  { s with allowErrors := allow }

def get? (s : Store) (key : String) : Option Entry :=
  s.entries.get? key

def put (s : Store) (key : String) (entry : Entry) : Store :=
  { s with entries := s.entries.insert key entry }

/-- Opens a document without a parse, in place of any earlier one. -/
def insert (s : Store) (key : String) (document : Document) (language : Option String) : Store :=
  s.put key ⟨document, language, none⟩

/-- Replaces the text of an open document and keeps its parse; tells whether it is open. -/
def updateText (s : Store) (key : String) (document : Document) : Bool × Store :=
  match s.get? key with
  | none => (false, s)
  | some entry => (true, s.put key { entry with document })

/-- Accepts a parse if the document is open at the parsed revision; tells whether it was. -/
def setParsed (s : Store) (key : String) (parse : Parse) : Bool × Store :=
  match s.get? key with
  | none => (false, s)
  | some entry =>
    if entry.document.revision = parse.tree.revision then
      (true, s.put key { entry with parse := some parse })
    else (false, s)

/-- Drops the parse of a document that is open at the given revision. -/
def clearParse (s : Store) (key : String) (revision : Int) : Store :=
  match s.get? key with
  | none => s
  | some entry =>
    if entry.document.revision = revision then s.put key { entry with parse := none } else s

/-- The parse of the current text, to be redone with edits; none if the parse is older. -/
def editedParse? (s : Store) (key : String) (edits : List Edit) : Option EditedParse :=
  match s.get? key with
  | none => none
  | some entry =>
    match entry.parse with
    | none => none
    | some parse =>
      if parse.tree.revision = entry.document.revision then some ⟨parse.listing, edits⟩ else none

def remove (s : Store) (key : String) : Option Entry × Store :=
  (s.get? key, { s with entries := s.entries.erase key })

/--
The tree of a document at a revision. The document must be open and parsed, the
parse must be of that revision, and free of errors unless those are allowed.
-/
def tree (s : Store) (key : String) (revision : Int) : Except Failure SyntaxTree :=
  match s.get? key with
  | none => .error (.outOfRange (.unknownDocument key))
  | some entry =>
    match entry.parse with
    | none => .error (.unparseable (.noTree key entry.language))
    | some parse =>
      if parse.tree.revision ≠ revision then
        .error (.mismatch (.revisions parse.tree.revision revision))
      else if parse.tree.hasError && !s.allowErrors then
        .error (.unparseable (.errorsInDocument key))
      else .ok parse.tree

/-- The store as a supplier of texts and trees. -/
def source (s : Store) : Source where
  document? key := (s.get? key).map Entry.document
  tree := s.tree

-- ════════════════════════════════════════════════════════════════════════
-- What the changes of a store are seen as
-- ════════════════════════════════════════════════════════════════════════

variable {s : Store} {key : String} {entry : Entry}

/-- The tree that is handed out is that of the stored parse, at the revision asked for. -/
theorem tree_eq_ok_iff {revision : Int} {tree : SyntaxTree} :
    s.tree key revision = .ok tree ↔ ∃ entry parse, s.get? key = some entry ∧
      entry.parse = some parse ∧ parse.tree = tree ∧ tree.revision = revision ∧
      (tree.hasError = true → s.allowErrors = true) := by
  constructor
  · intro h
    unfold Store.tree at h
    split at h
    · simp at h
    · next entry hget =>
      split at h
      · simp at h
      · next parse hparse =>
        split at h
        · simp at h
        · next hrevision =>
          split at h
          · simp at h
          · next herrors =>
            simp only [Except.ok.injEq] at h
            subst h
            refine ⟨entry, parse, hget, hparse, rfl, Decidable.of_not_not hrevision, ?_⟩
            intro herror
            simpa [herror] using herrors
  · rintro ⟨entry, parse, hget, hparse, rfl, hrevision, herrors⟩
    unfold Store.tree
    simp only [hget, hparse, hrevision]
    cases herror : parse.tree.hasError <;> simp_all

theorem get?_put (s : Store) (key : String) (entry : Entry) (other : String) :
    (s.put key entry).get? other = if key = other then some entry else s.get? other := by
  split
  · next heq => exact heq ▸ s.entries.get?_insert_self key entry
  · next hne => exact s.entries.get?_insert_of_ne (fun h => hne h.symm) entry

theorem get?_remove (s : Store) (key other : String) :
    (s.remove key).2.get? other = if key = other then none else s.get? other := by
  split
  · next heq => exact heq ▸ s.entries.get?_erase_self key
  · next hne => exact s.entries.get?_erase_of_ne fun h => hne h.symm

theorem get?_updateText (h : s.get? key = some entry) (document : Document) (other : String) :
    (s.updateText key document).2.get? other =
      if key = other then some { entry with document } else s.get? other := by
  unfold updateText
  rw [h]
  exact s.get?_put key _ other

theorem get?_setParsed {parse : Parse} (h : s.get? key = some entry)
    (hrevision : parse.tree.revision = entry.document.revision) (other : String) :
    (s.setParsed key parse).2.get? other =
      if key = other then some { entry with parse := some parse } else s.get? other := by
  unfold setParsed
  rw [h]
  simp only [if_pos hrevision.symm]
  exact s.get?_put key _ other

theorem get?_clearParse (h : s.get? key = some entry) (other : String) :
    (s.clearParse key entry.document.revision).get? other =
      if key = other then some { entry with parse := none } else s.get? other := by
  unfold clearParse
  rw [h]
  simp only [if_pos]
  exact s.get?_put key _ other

end Store

end SelectionGrowth
